import RuleLogic.Proofs.DecimalRounding
import RuleLogic.Proofs.NumeralText
import RuleLogic.Json.Number
import Mathlib.Data.List.Basic
import Mathlib.Data.List.TakeWhile

/-!
# Numbers read back from their texts

The text of a number is the text of a numeral that JSON admits.  The numeral of a double has the
significant digits of its shortest decimal, with the leading one at the same power of ten, and a
fraction or an exponent; so it is read as a double, and as the same one.

    n.Spells ds e → n.decimal rounds as the digits ds with the leading one at 10 ^ e
    ∃ m, m.text = n.text ∧ admits m ∧ ofNumeral? m = some n             (exists_numeral)
    Number.read? n.text = some n                                        (read?_text)
-/

namespace RuleLogic

/-! ## Digits of natural numbers -/

/-- The digits of a positive number do not begin with zero. -/
theorem head?_toDigits_ne {n : Nat} (hn : 0 < n) : (Nat.toDigits 10 n).head? ≠ some '0' := by
  induction n using Nat.strong_induction_on with
  | _ n ih =>
    rw [Nat.toDigits_eq_if (by decide)]
    split
    · intro h
      have hzero : n = 0 := Nat.digitChar_eq_zero.1 (Option.some.inj h)
      omega
    · rw [List.head?_append_of_ne_nil _ Nat.toDigits_ne_nil]
      exact ih (n / 10) (by omega) (by omega)

theorem isDigit_toDigits (n : Nat) : ∀ c ∈ Nat.toDigits 10 n, c.isDigit :=
  fun _ hc => Nat.isDigit_of_mem_toDigits (by decide) (by decide) hc

theorem ofDigits_toDigits (n : Nat) : Numeral.ofDigits (Nat.toDigits 10 n) = n :=
  Nat.ofDigitChars_ten_toDigits

/-! ## Significant digits -/

namespace Double

/-- The digits of a decimal are its significant digits and zeros behind them. -/
theorem significantDigits_append_zeros (d : Decimal) :
    ∃ k, Nat.toDigits 10 d.digits = significantDigits d ++ List.replicate k '0' := by
  refine ⟨((Nat.toDigits 10 d.digits).reverse.takeWhile (· == '0')).length, ?_⟩
  have hzeros : (Nat.toDigits 10 d.digits).reverse.takeWhile (· == '0') =
      List.replicate ((Nat.toDigits 10 d.digits).reverse.takeWhile (· == '0')).length '0' :=
    by
    refine List.eq_replicate_of_mem fun c hc => ?_
    have hzero := List.mem_takeWhile_imp hc
    exact eq_of_beq hzero
  rw [significantDigits, ← List.reverse_replicate, ← hzeros, ← List.reverse_append,
    List.takeWhile_append_dropWhile, List.reverse_reverse]

theorem isDigit_significantDigits (d : Decimal) : ∀ c ∈ significantDigits d, c.isDigit := by
  intro c hc
  obtain ⟨k, hk⟩ := significantDigits_append_zeros d
  refine isDigit_toDigits d.digits c ?_
  rw [hk]
  exact List.mem_append_left _ hc

theorem significantDigits_ne_nil {d : Decimal} (hd : d.digits ≠ 0) : significantDigits d ≠ [] := by
  intro hnil
  obtain ⟨k, hk⟩ := significantDigits_append_zeros d
  rw [hnil, List.nil_append] at hk
  refine hd ?_
  rw [← ofDigits_toDigits d.digits, hk, Numeral.ofDigits_replicate_zero]

theorem head?_significantDigits_ne {d : Decimal} (hd : d.digits ≠ 0) :
    (significantDigits d).head? ≠ some '0' := by
  obtain ⟨k, hk⟩ := significantDigits_append_zeros d
  have h := head?_toDigits_ne (Nat.pos_of_ne_zero hd)
  rwa [hk, List.head?_append_of_ne_nil _ (significantDigits_ne_nil hd)] at h

/-- The significant digits with the leading one at its place round to what the decimal rounds to. -/
theorem roundToDouble_significantDigits (d : Decimal) :
    Decimal.roundToDouble ⟨Numeral.ofDigits (significantDigits d),
      leadingDigitExponent d + 1 - (significantDigits d).length⟩ = d.roundToDouble := by
  obtain ⟨k, hk⟩ := significantDigits_append_zeros d
  have hdigits : Numeral.ofDigits (significantDigits d) * 10 ^ k = d.digits := by
    rw [← ofDigits_toDigits d.digits, hk, Numeral.ofDigits_append, Numeral.ofDigits_replicate_zero,
      List.length_replicate, Nat.add_zero]
  have hexp : leadingDigitExponent d + 1 - (significantDigits d).length = d.exponent + k := by
    rw [leadingDigitExponent, hk, List.length_append, List.length_replicate]
    omega
  rw [hexp, ← Decimal.roundToDouble_shift, hdigits]

/-- The leading digit of a decimal that rounds to a positive finite double stands within 400 places
of the point. -/
theorem natAbs_leadingDigitExponent_le {d : Decimal} (hne : d.roundToDouble ≠ 0)
    (hlt : d.roundToDouble < limit) : (leadingDigitExponent d).natAbs ≤ 400 := by
  have hd : d.digits ≠ 0 := fun hzero => hne (Decimal.roundToDouble_eq_zero hzero)
  have hpos : 0 < (Nat.toDigits 10 d.digits).length := Nat.length_toDigits_pos
  have hupper : d.digits < 10 ^ (Nat.toDigits 10 d.digits).length :=
    (Nat.length_toDigits_le_iff (by decide) hpos).1 (Nat.le_refl _)
  have hlower : 10 ^ ((Nat.toDigits 10 d.digits).length - 1) ≤ d.digits := by
    by_cases hone : (Nat.toDigits 10 d.digits).length = 1
    · rw [hone]
      exact Nat.pos_of_ne_zero hd
    · refine Nat.not_lt.1 fun hless => ?_
      have := (Nat.length_toDigits_le_iff (by decide) (by omega)).2 hless
      omega
  have hsmall : ¬ d.exponent + (Nat.toDigits 10 d.digits).length + 400 ≤ 0 := fun h =>
    hne (Decimal.roundToDouble_of_small Decimal.two_mul_unitsPerOne_le hupper h)
  have hlarge : ¬ 400 ≤ d.exponent + ((Nat.toDigits 10 d.digits).length - 1 : Nat) := fun h =>
    Nat.not_le.2 hlt
      (Decimal.limit_le_roundToDouble Decimal.limit_le_mul_unitsPerOne hlower h)
  unfold leadingDigitExponent
  omega

end Double

/-! ## Numerals of decimals -/

/-- An admitted numeral with a fraction or an exponent that spells digits with the leading one at
`10 ^ e`. -/
structure Numeral.Spells (n : Numeral) (ds : List Char) (e : Int) : Prop where
  wellFormed : n.WellFormed
  admitted : Number.admits n = true
  notWhole : (n.fraction.isNone && n.exponent.isNone) = false
  whole_length : n.whole.length ≤ 16
  exponent : ∀ p ∈ n.exponent, ofDigits p.2 = e.natAbs
  value : n.decimal.roundToDouble = Decimal.roundToDouble ⟨ofDigits ds, e + 1 - ds.length⟩

namespace Numeral

section
variable {sign : Option Char} {ds whole fraction : List Char} {e : Int}

/-- Zeros around the digits do not change the value when the exponent makes up for them. -/
theorem roundToDouble_decimal {n : Numeral} (front back : Nat)
    (hdigits : n.digits = List.replicate front '0' ++ ds ++ List.replicate back '0')
    (he : n.decimal.exponent + back = e + 1 - ds.length) :
    n.decimal.roundToDouble = Decimal.roundToDouble ⟨ofDigits ds, e + 1 - ds.length⟩ := by
  have hvalue : n.decimal.digits = ofDigits ds * 10 ^ back := by
    show n.digitsValue = _
    rw [digitsValue_eq, hdigits, ofDigits_append, ofDigits_append, ofDigits_replicate_zero,
      ofDigits_replicate_zero, List.length_replicate]
    simp
  rw [← he, ← Decimal.roundToDouble_shift, ← hvalue]

theorem isSign_of_eq_minus (hs : ∀ c ∈ sign, c = '-') : ∀ c ∈ sign, isSign c := by
  intro c hc
  rw [hs c hc]
  decide

theorem ne_plus_of_eq_minus (hs : ∀ c ∈ sign, c = '-') : sign ≠ some '+' := by
  intro h
  exact absurd (hs '+' h) (by decide)

/-- Whole digits and a fraction that are the digits, with zeros around them. -/
theorem spells_plain (front back : Nat) (hs : ∀ c ∈ sign, c = '-') (hd : ∀ c ∈ ds, c.isDigit)
    (hdigits : whole ++ fraction = List.replicate front '0' ++ ds ++ List.replicate back '0')
    (hwhole : whole = ['0'] ∨ whole ≠ [] ∧ whole.head? ≠ some '0') (hfraction : fraction ≠ [])
    (hlen : whole.length ≤ 16) (he : -(fraction.length : Int) + back = e + 1 - ds.length) :
    Spells ⟨sign, whole, some fraction, none⟩ ds e := by
  have hall : ∀ c ∈ whole ++ fraction, c.isDigit := by
    intro c hc
    rw [hdigits, List.mem_append, List.mem_append] at hc
    rcases hc with (hc | hc) | hc
    · rw [List.eq_of_mem_replicate hc]
      decide
    · exact hd c hc
    · rw [List.eq_of_mem_replicate hc]
      decide
  constructor
  case wellFormed =>
    refine ⟨isSign_of_eq_minus hs, fun c hc => hall c (List.mem_append_left _ hc), ?_, nofun⟩
    intro ds hds c hc
    cases hds
    exact hall c (List.mem_append_right _ hc)
  case admitted => simpa [Number.admits, ne_plus_of_eq_minus hs, hfraction] using hwhole
  case notWhole => rfl
  case whole_length => exact hlen
  case exponent => exact nofun
  case value =>
    refine roundToDouble_decimal front back hdigits ?_
    show (0 : Int) - fraction.length + back = _
    omega

/-- One whole digit, the others behind the point if there are any, and an exponent. -/
theorem spells_scientific {d : Char} {rest : List Char} (hs : ∀ c ∈ sign, c = '-')
    (hd : ∀ c ∈ d :: rest, c.isDigit) (hhead : d ≠ '0') :
    Spells ⟨sign, [d], if rest = [] then none else some rest,
      some (decide (e < 0), Nat.toDigits 10 e.natAbs)⟩ (d :: rest) e := by
  have hgetD : (if rest = [] then none else some rest).getD [] = rest := by
    split
    · next h => exact h.symm
    · rfl
  constructor
  case wellFormed =>
    refine ⟨isSign_of_eq_minus hs, ?_, ?_, ?_⟩
    · intro c hc
      exact hd c (List.mem_append_left rest hc)
    · intro ds hds c hc
      have : ds = rest := by
        by_cases h : rest = []
        · simp [h] at hds
        · simpa [h, eq_comm] using hds
      exact hd c (List.mem_cons_of_mem d (this ▸ hc))
    · intro p hp
      cases hp
      exact ⟨Nat.toDigits_ne_nil, isDigit_toDigits _⟩
  case admitted =>
    by_cases h : rest = [] <;> simp [Number.admits, ne_plus_of_eq_minus hs, hhead, h]
  case notWhole => simp
  case whole_length =>
    show 1 ≤ 16
    decide
  case exponent =>
    intro p hp
    cases hp
    exact ofDigits_toDigits e.natAbs
  case value =>
    refine roundToDouble_decimal 0 0 ?_ ?_
    · simp [digits, hgetD]
    · have hexp : exponentValue ⟨sign, [d], if rest = [] then none else some rest,
          some (decide (e < 0), Nat.toDigits 10 e.natAbs)⟩ = e := by
        unfold exponentValue
        by_cases h : e < 0
        · rw [decide_eq_true h]
          show -(ofDigits (Nat.toDigits 10 e.natAbs) : Int) = e
          rw [ofDigits_toDigits]
          omega
        · rw [decide_eq_false h]
          show (ofDigits (Nat.toDigits 10 e.natAbs) : Int) = e
          rw [ofDigits_toDigits]
          omega
      show exponentValue _ - _ + _ = _
      rw [hexp, hgetD]
      simp

/-- A plain text is the text of a numeral that spells the digits. -/
theorem exists_spells_plainText (hs : ∀ c ∈ sign, c = '-') (hd : ∀ c ∈ ds, c.isDigit)
    (hne : ds ≠ []) (hhead : ds.head? ≠ some '0') (he : e ≤ 15) :
    ∃ n : Numeral, n.sign = sign ∧ n.text = sign.toList ++ Double.plainText ds e ∧
      n.Spells ds e := by
  unfold Double.plainText
  by_cases hneg : e < 0
  · rw [if_pos hneg]
    refine ⟨⟨sign, ['0'], some (List.replicate (-e - 1).toNat '0' ++ ds), none⟩, rfl, ?_, ?_⟩
    · simp [text, fractionText, exponentText]
    · refine spells_plain ((-e - 1).toNat + 1) 0 hs hd ?_ (.inl rfl) (by simp [hne]) (by decide) ?_
      · simp [List.replicate_succ]
      · rw [List.length_append, List.length_replicate]
        omega
  rw [if_neg hneg]
  by_cases hwhole : ds.length ≤ e.toNat + 1
  · refine ⟨⟨sign, ds ++ List.replicate (e.toNat + 1 - ds.length) '0', some ['0'], none⟩,
      rfl, ?_, ?_⟩
    · simp [text, fractionText, exponentText, hwhole]
    · refine spells_plain 0 (e.toNat + 1 - ds.length + 1) hs hd ?_ (.inr ⟨?_, ?_⟩) (by decide)
        ?_ ?_
      · simp [List.replicate_succ']
      · simp [hne]
      · rwa [List.head?_append_of_ne_nil _ hne]
      · rw [List.length_append, List.length_replicate]
        omega
      · rw [List.length_singleton]
        omega
  · refine ⟨⟨sign, ds.take (e.toNat + 1), some (ds.drop (e.toNat + 1)), none⟩, rfl, ?_, ?_⟩
    · simp [text, fractionText, exponentText, hwhole]
    · refine spells_plain 0 0 hs hd ?_ (.inr ⟨?_, ?_⟩) ?_ ?_ ?_
      · simp
      · simp [hne]
      · simpa [List.head?_take] using hhead
      · simpa using hwhole
      · rw [List.length_take]
        omega
      · rw [List.length_drop]
        omega

/-- A scientific text is the text of a numeral that spells the digits. -/
theorem exists_spells_scientificText (hs : ∀ c ∈ sign, c = '-') (hd : ∀ c ∈ ds, c.isDigit)
    (hne : ds ≠ []) (hhead : ds.head? ≠ some '0') :
    ∃ n : Numeral, n.sign = sign ∧ n.text = sign.toList ++ Double.scientificText ds e ∧
      n.Spells ds e := by
  obtain ⟨d, rest, rfl⟩ := List.exists_cons_of_ne_nil hne
  refine ⟨_, rfl, ?_, spells_scientific hs hd (by simpa using hhead)⟩
  by_cases hneg : e < 0 <;> cases rest <;>
    simp [text, fractionText, exponentText, Double.scientificText, hneg]

/-- The text of a decimal is the text of a numeral that spells its significant digits. -/
theorem exists_spells_decimalText {d : Decimal} (hs : ∀ c ∈ sign, c = '-') (hd : d.digits ≠ 0) :
    ∃ n : Numeral, n.sign = sign ∧ n.text = sign.toList ++ Double.decimalText d ∧
      n.Spells (Double.significantDigits d) (Double.leadingDigitExponent d) := by
  have hdigits := Double.isDigit_significantDigits d
  have hne := Double.significantDigits_ne_nil hd
  have hhead := Double.head?_significantDigits_ne hd
  unfold Double.decimalText
  by_cases hplain : Double.writtenPlainly (Double.leadingDigitExponent d)
  · have he : Double.leadingDigitExponent d ≤ 15 := by
      unfold Double.writtenPlainly at hplain
      rw [Bool.and_eq_true, decide_eq_true_eq, decide_eq_true_eq] at hplain
      exact hplain.2
    simp only [hplain, if_true]
    exact exists_spells_plainText hs hdigits hne hhead he
  · simp only [hplain]
    exact exists_spells_scientificText hs hdigits hne hhead

end

end Numeral

/-! ## Numerals of numbers -/

namespace Number

theorem ofNumeral?_of_spells {n : Numeral} {ds : List Char} {e : Int} {x : Double}
    (h : n.Spells ds e) (hsign : n.negative = x.negative)
    (hr : Decimal.roundToDouble ⟨Numeral.ofDigits ds, e + 1 - ds.length⟩ = x.magnitude) :
    ofNumeral? n = some (.double x) := by
  have hcut : cutWhole n = n := by
    refine cutWhole_eq_self n (Nat.le_trans h.whole_length ?_)
    decide
  unfold ofNumeral?
  simp only [h.notWhole, Bool.false_and]
  show doubleOf? n = _
  rw [doubleOf?, hcut, Numeral.toDouble?_eq_some h.wellFormed.digits hsign (h.value.trans hr)]
  rfl

/-- The sign in front of the text of a number. -/
def signText (negative : Bool) : Option Char := if negative then some '-' else none

theorem eq_minus_of_signText (negative : Bool) : ∀ c ∈ signText negative, c = '-' := by
  intro c hc
  cases negative with
  | false => cases hc
  | true =>
    cases hc
    rfl

/-- The text of a double without its sign is that of a numeral that spells digits which round to
the double. -/
theorem exists_spells_double (x : Double) {sign : Option Char} (hs : ∀ c ∈ sign, c = '-') :
    ∃ (n : Numeral) (ds : List Char) (e : Int), n.sign = sign ∧
      n.text = sign.toList ++ (if x.magnitude = 0 then ['0', '.', '0']
        else Double.decimalText (Double.shortest x.magnitude)) ∧ n.Spells ds e ∧
      e.natAbs ≤ 400 ∧
      Decimal.roundToDouble ⟨Numeral.ofDigits ds, e + 1 - ds.length⟩ = x.magnitude := by
  by_cases hx : x.magnitude = 0
  · refine ⟨⟨sign, ['0'], some ['0'], none⟩, ['0'], 0, rfl, ?_, ?_, by decide, ?_⟩
    · rw [if_pos hx]
      rfl
    · have hdigit : ∀ c ∈ ['0'], c.isDigit := by
        intro c hc
        rw [List.mem_singleton.1 hc]
        decide
      exact Numeral.spells_plain 0 1 hs hdigit rfl (.inl rfl) (by decide) (by decide) rfl
    · rw [hx]
      refine Decimal.roundToDouble_eq_zero ?_
      exact Numeral.ofDigits_replicate_zero 1
  · have hround := Double.roundToDouble_shortest x.spacing_dvd
    have hd : (Double.shortest x.magnitude).digits ≠ 0 := by
      intro hzero
      rw [Decimal.roundToDouble_eq_zero hzero] at hround
      exact hx hround.symm
    obtain ⟨n, hsign, htext, hspells⟩ := Numeral.exists_spells_decimalText hs hd
    refine ⟨n, _, _, hsign, ?_, hspells, ?_, ?_⟩
    · rw [if_neg hx, htext]
    · rw [← hround] at hx
      refine Double.natAbs_leadingDigitExponent_le hx ?_
      rw [hround]
      exact x.magnitude_lt
    · rw [Double.roundToDouble_significantDigits, hround]

/-- The text of a double is that of a numeral of its sign. -/
theorem exists_spells_text (x : Double) :
    ∃ (n : Numeral) (ds : List Char) (e : Int), n.text = x.text ∧ n.negative = x.negative ∧
      n.Spells ds e ∧ e.natAbs ≤ 400 ∧
      Decimal.roundToDouble ⟨Numeral.ofDigits ds, e + 1 - ds.length⟩ = x.magnitude := by
  obtain ⟨n, ds, e, hsign, htext, h⟩ := exists_spells_double x (eq_minus_of_signText x.negative)
  refine ⟨n, ds, e, ?_, ?_, h⟩
  · rw [htext, Double.text]
    cases x.negative <;> rfl
  · rw [Numeral.negative, hsign]
    cases x.negative <;> rfl

/-- The text of a double is the text of a numeral that is read as the double. -/
theorem exists_numeral_double (x : Double) :
    ∃ n : Numeral, n.text = x.text ∧ n.WellFormed ∧ admits n = true ∧
      ofNumeral? n = some (.double x) := by
  obtain ⟨n, ds, e, htext, hsign, hspells, -, hround⟩ := exists_spells_text x
  exact ⟨n, htext, hspells.wellFormed, hspells.admitted, ofNumeral?_of_spells hspells hsign hround⟩

/-- The numeral of a sign and the digits of a natural number. -/
def wholeNumeral (negative : Bool) (k : Nat) : Numeral :=
  ⟨signText negative, Nat.toDigits 10 k, none, none⟩

section
variable (negative : Bool) (k : Nat)

theorem wellFormed_wholeNumeral : (wholeNumeral negative k).WellFormed :=
  ⟨Numeral.isSign_of_eq_minus (eq_minus_of_signText negative), isDigit_toDigits k, nofun, nofun⟩

theorem text_wholeNumeral :
    (wholeNumeral negative k).text = (signText negative).toList ++ Nat.toDigits 10 k := by
  simp [wholeNumeral, Numeral.text, Numeral.fractionText, Numeral.exponentText]

theorem negative_wholeNumeral : (wholeNumeral negative k).negative = negative := by
  cases negative <;> rfl

theorem digits_wholeNumeral : (wholeNumeral negative k).digits = Nat.toDigits 10 k :=
  List.append_nil _

theorem decimal_wholeNumeral : (wholeNumeral negative k).decimal = ⟨k, 0⟩ := by
  rw [Numeral.decimal, Numeral.digitsValue_eq, digits_wholeNumeral, ofDigits_toDigits]
  rfl

end

theorem integerText_eq (n : Int) :
    integerText n = (signText (decide (n < 0))).toList ++ Nat.toDigits 10 n.natAbs := by
  unfold integerText signText
  by_cases h : n < 0 <;> simp [h]

/-- The text of an integer is the text of a numeral that is read as the integer. -/
theorem exists_numeral_int {k : Int} (h : minInteger ≤ k ∧ k ≤ maxInteger) :
    ∃ n : Numeral, n.text = integerText k ∧ n.WellFormed ∧ admits n = true ∧
      ofNumeral? n = some (.int k h) := by
  refine ⟨wholeNumeral (decide (k < 0)) k.natAbs, ?_, wellFormed_wholeNumeral _ _, ?_, ?_⟩
  · rw [text_wholeNumeral, integerText_eq]
  · have hsign := Numeral.ne_plus_of_eq_minus (eq_minus_of_signText (decide (k < 0)))
    by_cases hk : k = 0
    · subst hk
      decide
    · have hhead := head?_toDigits_ne (Int.natAbs_pos.2 hk)
      simp [wholeNumeral, admits, hsign, hhead, Nat.toDigits_ne_nil]
  · unfold ofNumeral?
    by_cases hk : k < 0
    · have hsize : (k.natAbs : Int) = -k := by omega
      have hne : k ≠ 0 := by omega
      simp [wholeNumeral, Numeral.negative, signText, hk, ofDigits_toDigits, ofInt?, h, hsize, hne]
    · have hsize : (k.natAbs : Int) = k := by omega
      simp [wholeNumeral, Numeral.negative, signText, hk, ofDigits_toDigits, ofInt?, h, hsize]

/-- The text of a number is the text of an admitted numeral that is read as the number. -/
theorem exists_numeral (n : Number) :
    ∃ m : Numeral, m.text = n.text ∧ m.WellFormed ∧ admits m = true ∧ ofNumeral? m = some n := by
  cases n with
  | int k h => exact exists_numeral_int h
  | double x => exact exists_numeral_double x

/-- Reading the text of a number gives the number back. -/
theorem read?_text (n : Number) : read? n.text = some n := by
  obtain ⟨m, htext, hwell, hadmits, hm⟩ := exists_numeral n
  rw [read?, ← htext, Numeral.scan_text hwell]
  simp only [hadmits, if_true, hm]

/-! ## Characters of numbers -/

theorem isTextChar_of_isDigit {c : Char} (h : c.isDigit) : isTextChar c := by
  rw [isTextChar, h, Bool.true_or]

theorem isTextChar_of_wellFormed {n : Numeral} (h : n.WellFormed) :
    ∀ c ∈ n.text, isTextChar c := by
  obtain ⟨sign, whole, fraction, exponent⟩ := n
  intro c hc
  rw [Numeral.text, List.mem_append, List.mem_append, List.mem_append] at hc
  rcases hc with hc | hc | hc | hc
  · have hsign := h.sign c (by simpa using hc)
    rw [Numeral.isSign, Bool.or_eq_true, beq_iff_eq, beq_iff_eq] at hsign
    rcases hsign with rfl | rfl <;> decide
  · exact isTextChar_of_isDigit (h.whole c hc)
  · cases fraction with
    | none => cases hc
    | some ds =>
      rcases List.mem_cons.1 hc with rfl | hc
      · decide
      · exact isTextChar_of_isDigit (h.fraction ds rfl c hc)
  · cases exponent with
    | none => cases hc
    | some p =>
      obtain ⟨minus, ds⟩ := p
      rcases List.mem_cons.1 hc with rfl | hc
      · decide
      · rcases List.mem_cons.1 hc with rfl | hc
        · cases minus <;> decide
        · exact isTextChar_of_isDigit ((h.exponent _ rfl).2 c hc)

/-- Every character of a number may stand in a number. -/
theorem isTextChar_of_mem_text (n : Number) : ∀ c ∈ n.text, isTextChar c := by
  obtain ⟨m, htext, hwell, -, -⟩ := exists_numeral n
  rw [← htext]
  exact isTextChar_of_wellFormed hwell

/-- A number begins with a minus sign or a digit. -/
theorem exists_text_eq_cons (n : Number) :
    ∃ c rest, n.text = c :: rest ∧ (c = '-' ∨ c.isDigit = true) := by
  obtain ⟨⟨sign, whole, fraction, exponent⟩, htext, hwell, hadmits, -⟩ := exists_numeral n
  rw [← htext]
  cases sign with
  | some c =>
    have hsign := hwell.sign c rfl
    rw [Numeral.isSign, Bool.or_eq_true, beq_iff_eq, beq_iff_eq] at hsign
    rcases hsign with rfl | rfl
    · simp [admits] at hadmits
    · exact ⟨'-', _, rfl, .inl rfl⟩
  | none =>
    cases whole with
    | nil => simp [admits] at hadmits
    | cons d ds => exact ⟨d, _, rfl, .inr (hwell.whole d List.mem_cons_self)⟩

end Number

end RuleLogic
