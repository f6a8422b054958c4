import RuleLogic.Numeral

/-!
# Numbers written in strings

A string counts as a number when it is blank, which reads as zero, or when a numeral stands in it
between white space.  A sign of either kind, a bare point behind or before digits and needless
zeros are all accepted; a numeral beyond the finite doubles is no number.  An exponent is read only
until it reaches `2 ^ 16`: the digits behind are passed over.

    read? "  1.50e2 " = 150        read? "" = 0        read? "1 2" = none
    cutExponent (numeral of "1e655370") = numeral of "1e65537"
-/

namespace RuleLogic.NumericText

/-- The characters with the Unicode property White_Space, as ranges of code points. -/
def whiteSpace : List (Nat × Nat) :=
  [(0x9, 0xD), (0x20, 0x20), (0x85, 0x85), (0xA0, 0xA0), (0x1680, 0x1680), (0x2000, 0x200A),
   (0x2028, 0x2029), (0x202F, 0x202F), (0x205F, 0x205F), (0x3000, 0x3000)]

def isWhiteSpace (c : Char) : Bool :=
  whiteSpace.any fun (first, last) => first ≤ c.toNat && c.toNat ≤ last

/-- A text without the white space at its ends. -/
def trim (text : List Char) : List Char :=
  ((text.dropWhile isWhiteSpace).reverse.dropWhile isWhiteSpace).reverse

/-- Where an exponent stops to be read, `2 ^ 16`. -/
def exponentLimit : Nat := 65536

/-- The digits that are read behind digits of the given value: all until the limit is reached. -/
def digitsUpToLimit (value : Nat) : List Char → List Char
  | [] => []
  | d :: ds =>
    if value < exponentLimit then d :: digitsUpToLimit (Nat.ofDigitChars 10 [d] value) ds else []

/-- The numeral with those digits of its exponent that are read. -/
def cutExponent (n : Numeral) : Numeral :=
  { n with exponent := n.exponent.map fun (minus, ds) => (minus, digitsUpToLimit 0 ds) }

/-- The number that a text holds. -/
def read? (text : List Char) : Option Double :=
  match trim text with
  | [] => some (.zero false)
  | trimmed => (Numeral.scan trimmed).bind fun n =>
    if n.digits.isEmpty then none else (cutExponent n).toDouble?

/-! ## Lemmas -/

/-- Exponents below the limit are read in full. -/
theorem digitsUpToLimit_eq_self (ds : List Char) (value : Nat)
    (h : Nat.ofDigitChars 10 ds value < exponentLimit) : digitsUpToLimit value ds = ds := by
  induction ds generalizing value with
  | nil => rfl
  | cons d ds ih =>
    rw [Nat.ofDigitChars_cons] at h
    have le : value ≤ Nat.ofDigitChars 10 ds (10 * value + (d.toNat - '0'.toNat)) := by
      rw [Nat.ofDigitChars_eq_ofDigitChars_zero]
      have := Nat.le_mul_of_pos_left (10 * value + (d.toNat - '0'.toNat))
        (Nat.pow_pos (n := ds.length) (by decide : 0 < 10))
      omega
    rw [digitsUpToLimit, if_pos (Nat.lt_of_le_of_lt le h), Nat.ofDigitChars_cons,
      Nat.ofDigitChars_nil, ih _ h]

end RuleLogic.NumericText
