import RuleLogic.Double.Notation

/-!
# Decimal numerals

A numeral is a sign, whole digits, an optional fraction and an optional exponent.  `scan` takes a
text apart; which parts may be missing or empty is for each use to say, since data and texts that
are read as numbers follow different rules.  `toDouble?` rounds the value to the nearest double.

    scan "-12.50e3" = sign '-', whole "12", fraction "50", exponent '+' "3"
-/

namespace RuleLogic

/-- A numeral taken apart; a fraction or exponent is present when its mark is. -/
structure Numeral where
  sign : Option Char
  whole : List Char
  fraction : Option (List Char)
  exponent : Option (Bool × List Char)
deriving DecidableEq

namespace Numeral

/-! ## Reading the parts -/

def isSign (c : Char) : Bool := c == '+' || c == '-'

/-- An optional sign, and what follows it. -/
def scanSign : List Char → Option Char × List Char
  | c :: rest => if isSign c then (some c, rest) else (none, c :: rest)
  | [] => (none, [])

/-- The digits behind a point, if there is a point. -/
def scanFraction : List Char → Option (List Char) × List Char
  | '.' :: rest => (some (rest.takeWhile Char.isDigit), rest.dropWhile Char.isDigit)
  | rest => (none, rest)

/-- The exponent part that ends the text: its sign (`true` for minus) and at least one digit. -/
def scanExponent : List Char → Option (Option (Bool × List Char))
  | [] => some none
  | c :: rest =>
    let (sign, ds) := scanSign rest
    if (c == 'e' || c == 'E') && !ds.isEmpty && ds.all Char.isDigit then
      some (some (sign == some '-', ds))
    else none

/-- The parts of a numeral that takes up the whole text. -/
def scan (text : List Char) : Option Numeral :=
  let (sign, unsigned) := scanSign text
  let (fraction, rest) := scanFraction (unsigned.dropWhile Char.isDigit)
  (scanExponent rest).map fun exponent =>
    ⟨sign, unsigned.takeWhile Char.isDigit, fraction, exponent⟩

/-! ## Value -/

def negative (n : Numeral) : Bool := n.sign == some '-'

/-- All digits before the exponent part. -/
def digits (n : Numeral) : List Char := n.whole ++ n.fraction.getD []

/-- The natural number that decimal digits write. -/
def ofDigits (ds : List Char) : Nat := Nat.ofDigitChars 10 ds 0

/-- The same number put together from the numbers of halves, which takes far less time for many
digits.  The text is halved `depth` times. -/
def ofDigitsByHalves : Nat → List Char → Nat
  | 0, ds => ofDigits ds
  | depth + 1, ds =>
    let (front, back) := ds.splitAt (ds.length / 2)
    ofDigitsByHalves depth front * Nat.pow 10 back.length + ofDigitsByHalves depth back

/-- The natural number that the digits before the exponent part write. -/
def digitsValue (n : Numeral) : Nat :=
  ofDigitsByHalves (Nat.log2 (n.digits.length / 512)) n.digits

/-- The value of the exponent part. -/
def exponentValue (n : Numeral) : Int :=
  match n.exponent with
  | none => 0
  | some (true, ds) => -(ofDigits ds : Int)
  | some (false, ds) => ofDigits ds

/-- The value without its sign. -/
def decimal (n : Numeral) : Decimal :=
  ⟨n.digitsValue, n.exponentValue - (n.fraction.getD []).length⟩

/-- The nearest double, `none` beyond the finite ones.  Numerals that are far too small or far too
large are told by their exponents alone, without computing a power of ten. -/
def toDouble? (n : Numeral) : Option Double :=
  let d := n.decimal
  if d.digits = 0 || d.exponent + n.digits.length < -400 then some (Double.zero n.negative)
  else if 400 < d.exponent then none
  else Double.nearest? n.negative d.unitsNum d.den

/-! ## Lemmas -/

theorem ofDigitsByHalves_eq (depth : Nat) (ds : List Char) :
    ofDigitsByHalves depth ds = ofDigits ds := by
  induction depth generalizing ds with
  | zero => rfl
  | succ depth ih =>
    have halves : ofDigits (ds.take (ds.length / 2) ++ ds.drop (ds.length / 2)) =
        Nat.pow 10 (ds.drop (ds.length / 2)).length * ofDigits (ds.take (ds.length / 2)) +
          ofDigits (ds.drop (ds.length / 2)) := by
      rw [ofDigits, Nat.ofDigitChars_append]
      exact Nat.ofDigitChars_eq_ofDigitChars_zero
    rw [List.take_append_drop] at halves
    rw [ofDigitsByHalves, List.splitAt_eq]
    simp only [ih]
    rw [halves, Nat.mul_comm]

theorem digitsValue_eq (n : Numeral) : n.digitsValue = ofDigits n.digits :=
  ofDigitsByHalves_eq _ _

end Numeral

end RuleLogic
